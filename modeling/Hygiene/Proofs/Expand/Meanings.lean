import Hygiene.Proofs.Expand.ChangeLaw

/-!
# What bindings mean stays

A run only adds bindings, and only a new binding is given a transformer, so what a binding means is never changed. A
binding that is hidden from a scope means a transformer with this output scope. All this is a law of whole modules.
-/

namespace Hygiene

/-- The second run has the bindings of the first with their meanings, and more. -/
structure Run.Grows (run run' : Run) : Prop where
  bindings : run.store.bindings.toList <+: run'.store.bindings.toList
  old : ∀ id < run.store.bindings.size, run'.registry.transformer? id = run.registry.transformer? id
  /-- Other meanings belong to bindings; one that is hidden means a transformer with the output scope it is hidden
  from. -/
  new : ∀ id t, run'.registry.transformer? id = some t → run.registry.transformer? id = some t ∨
    ∃ b, run'.store.bindings.toList[id]? = some b ∧ ∀ o, b.hiddenFrom = some o → t.outputScope = some o

namespace Run.Grows

variable {run run' run'' : Run}

theorem of_registry (h : run.store.bindings.toList <+: run'.store.bindings.toList)
    (hregistry : run'.registry.transformers = run.registry.transformers) : run.Grows run' where
  bindings := h
  old id _ := by rw [Registry.transformer?, Registry.transformer?, hregistry]
  new id t ht := by
    rw [Registry.transformer?, hregistry] at ht
    exact Or.inl ht

theorem refl (run : Run) : run.Grows run := of_registry (List.prefix_refl _) rfl

theorem size_le (h : run.Grows run') : run.store.bindings.size ≤ run'.store.bindings.size := by
  simpa using h.bindings.length_le

/-- A binding stays in its place. -/
theorem getElem? (h : run.Grows run') {id : BindingId} {b : Binding} (hb : run.store.bindings.toList[id]? = some b) :
    run'.store.bindings.toList[id]? = some b := by
  obtain ⟨more, hmore⟩ := h.bindings
  rw [← hmore, List.getElem?_append_left (List.getElem?_eq_some_iff.1 hb).1]
  exact hb

theorem trans (h : run.Grows run') (h' : run'.Grows run'') : run.Grows run'' where
  bindings := h.bindings.trans h'.bindings
  old id hid := (h'.old id (Nat.lt_of_lt_of_le hid h.size_le)).trans (h.old id hid)
  new id t ht := by
    rcases h'.new id t ht with ht' | hnew
    · rcases h.new id t ht' with ht | ⟨b, hb, hhidden⟩
      · exact Or.inl ht
      · exact Or.inr ⟨b, h'.getElem? hb, hhidden⟩
    · exact Or.inr hnew

/-- A new binding is given a meaning. -/
theorem define (h : run.Grows run') {id : BindingId} {b : Binding} (hid : run.store.bindings.size ≤ id)
    (hb : run'.store.bindings.toList[id]? = some b) {t : Transformer}
    (hhidden : ∀ o, b.hiddenFrom = some o → t.outputScope = some o) :
    run.Grows { run' with registry := run'.registry.define id t } where
  bindings := h.bindings
  old k hk := by
    have hne : (id == k) = false := beq_false_of_ne (Nat.ne_of_gt (Nat.lt_of_lt_of_le hk hid))
    rw [← h.old k hk]
    simp only [Registry.transformer?, Registry.define, Assoc.get?_insert, hne, Bool.false_eq_true, if_false]
  new k t' ht' := by
    simp only [Registry.transformer?, Registry.define, Assoc.get?_insert] at ht'
    split at ht'
    · next heq =>
      cases ht'
      rw [← eq_of_beq heq]
      exact Or.inr ⟨b, hb, hhidden⟩
    · exact h.new k t' ht'

end Run.Grows

namespace Change

/-- The change that keeps bindings with their meanings. -/
abbrev growth : Change where
  Rel := Run.Grows
  refl := .refl
  trans := .trans

theorem growth_inert : growth.Covers .inert where
  rel h := .of_registry h.bindings (by rw [h.same])

theorem growth_executes (phase : Option Phase) : growth.Covers (.executes phase) where
  rel h := by
    rw [h.same]
    exact .of_registry (List.prefix_refl _) rfl

theorem growth_ofReading : growth.OfReading where
  inert := growth_inert
  code := growth_executes none
  opening _ _ := .of_registry (List.prefix_refl _) rfl
  closing _ _ _ := .of_registry (List.prefix_refl _) rfl

theorem growth_notes : growth.Notes := fun _ _ _ _ _ _ => .of_registry (List.prefix_refl _) rfl

end Change

namespace Expand

variable {α : Type} {x : Expand α}

/-- However the computation ends, bindings stay with their meanings. -/
def Grows (x : Expand α) : Prop := Makes .growth x

theorem Grows.inert (hx : Inert x) : Grows x := .mono Change.growth_inert hx

theorem Grows.noted (hx : Noted x) : Grows x :=
  Makes.noted Change.growth_notes hx

theorem Grows.executes {phase : Option Phase} (hx : Executes phase x) : Grows x :=
  .mono (Change.growth_executes phase) hx

/-! ### Declarations -/

theorem getElem?_afterBind (run : Run) (ident : Token) (kind : BindingKind) (rename : Bool) :
    (afterBind run ident kind rename).store.bindings.toList[run.store.bindings.size]? =
      some (newBinding run ident kind rename) := by
  simp [afterBind]

theorem grows_afterBind (run : Run) (ident : Token) (kind : BindingKind) (rename : Bool) :
    run.Grows (afterBind run ident kind rename) :=
  .of_registry (by simp [afterBind]) rfl

/-- The run after a binding has been made that is hidden from a new scope. -/
def afterHidden (run : Run) (binding : Token) : Run :=
  { afterBind run binding .transformer true with
    store := ({ (afterBind run binding .transformer true).store with nextScope := run.store.nextScope + 1 } : Store).hide
      run.store.bindings.size run.store.nextScope
    events := .hidden run.store.bindings.size run.store.nextScope :: (afterBind run binding .transformer true).events }

theorem bindHidden_eq (binding : Token) (run : Run) : bindHidden binding run =
    .ok (run.store.bindings.size, run.store.nextScope) (afterHidden run binding) := by
  unfold bindHidden
  simp only [Bind.bind, EStateM.bind, bind_eq]
  rfl

/-- The binding that is made is hidden from the new scope. -/
theorem getElem?_afterHidden (run : Run) (binding : Token) :
    (afterHidden run binding).store.bindings.toList[run.store.bindings.size]? =
      some { newBinding run binding .transformer true with hiddenFrom := some run.store.nextScope } := by
  simp [afterHidden, Store.hide, afterBind]

theorem grows_afterHidden (run : Run) (binding : Token) : run.Grows (afterHidden run binding) := by
  have h := (Grows.inert (inert_bindHidden binding)).final run
  rwa [bindHidden_eq] at h

/-- Settling a declaration gives a transformer to a binding that is made with it, or to one that was made before and is
hidden from nothing. -/
theorem grows_settle (s : Setup) (home : Home) (binding : Token) (early : Option BindingId) (init : Expression)
    {run run' : Run} (h : run.Grows run')
    (hearly : ∀ id ∈ early, run.store.bindings.size ≤ id ∧
      ∃ b, run'.store.bindings.toList[id]? = some b ∧ b.hiddenFrom = none) :
    Yields run' (settle s home binding early init) (fun _ => run.Grows) fun _ => run.Grows := by
  have hvalue : Yields run' (transformerValue s binding.name binding.site init) (fun _ => run'.Grows) fun _ => run.Grows :=
    (yields_final.2 ((Grows.executes (executes_transformerValue s binding.name binding.site init)).final run')).imp
      (fun _ _ h' => h') fun _ _ h' => h.trans h'
  refine .bind hvalue fun value run₁ h₁ => ?_
  cases early with
  | some id =>
    obtain ⟨hid, b, hb, hhidden⟩ := hearly id rfl
    exact (h.trans h₁).define hid (h₁.getElem? hb) fun o ho => by rw [hhidden] at ho; cases ho
  | none =>
    refine .bind_ok (bindHidden_eq binding run₁) ?_
    exact ((h.trans h₁).trans (grows_afterHidden run₁ binding)).define (h.trans h₁).size_le
      (getElem?_afterHidden run₁ binding) fun _ ho => ho

theorem grows_bindImport (s : Setup) (record : ModuleRecord) (imported : Import) (wanted : String × Token × Site) :
    Grows (bindImport s record imported wanted) := by
  obtain ⟨name, binding, site⟩ := wanted
  unfold bindImport
  dsimp only
  split
  · exact .fail trivial
  · next exported _ =>
    intro run
    have hgrown := grows_afterBind run binding .transformer false
    refine .bind_ok (bind_eq binding .transformer false run) (.get_bind ?_)
    split
    · exact hgrown.define (Nat.le_refl _) (getElem?_afterBind run binding .transformer false) nofun
    · exact hgrown
  · refine .ite ?_ (.discard (Grows.inert (inert_bind _ _ _)))
    refine .bind .get fun run => .bind (Grows.executes (executes_instantiate s _ _ _)) fun values => ?_
    exact .bind (Grows.inert (inert_bind _ _ _)) fun id => .modify fun run => .of_registry (List.prefix_refl _) rfl

end Expand

namespace Parse

theorem grows_invokeHere (s : Setup) (stream : Stream) : Expand.Grows (invokeHere s stream) :=
  makes_invokeHere Change.growth_ofReading s stream

/-- The name of a recursive transformer is bound when its declaration begins, so it is new when it is given a meaning. -/
theorem grows_declared (s : Setup) (home : Home) (binding : Token) (recursive : Bool) {x : Parse Expression}
    (hx : ∀ stream, Expand.Grows (x stream)) (stream : Stream) :
    Expand.Grows (declared s home binding recursive x stream) := by
  refine .of_final fun run => ?_
  have hearly : Expand.Yields run (Expand.bindEarly binding recursive) (fun early run' => run.Grows run' ∧
      ∀ id ∈ early, run.store.bindings.size ≤ id ∧
        ∃ b, run'.store.bindings.toList[id]? = some b ∧ b.hiddenFrom = none) fun _ => run.Grows := by
    cases recursive with
    | true =>
      refine .bind_ok (Expand.bind_eq binding .transformer true run)
        ⟨Expand.grows_afterBind run binding .transformer true, fun id hid => ?_⟩
      cases hid
      exact ⟨Nat.le_refl _, _, Expand.getElem?_afterBind run binding .transformer true, rfl⟩
    | false => exact ⟨.refl run, nofun⟩
  refine Expand.yields_final.1 (yields_lift_bind hearly ?_)
  rintro early run' ⟨hgrown, hearly⟩
  have hread : Expand.Yields run' (x stream) (fun _ => run'.Grows) fun _ => run.Grows :=
    (Expand.yields_final.2 ((hx stream).final run')).imp (fun _ _ h => h) fun _ _ h => hgrown.trans h
  refine yields_bind hread fun init stream' run₁ h₁ => yields_bind (P := fun _ => run.Grows)
    (yields_lift (Expand.grows_settle s home binding early init (hgrown.trans h₁) ?_)) fun _ _ _ h => .pure h
  intro id hid
  obtain ⟨hle, b, hb, hhidden⟩ := hearly id hid
  exact ⟨hle, b, h₁.getElem? hb, hhidden⟩

end Parse

/-- Bindings stay with their meanings. -/
def growthLaw (s : Setup) : ModuleLaw s s where
  Rel x _ := Expand.Grows x
  bind_rel hx hf := hx.bind_mayGive fun a ha => hf a (Or.inl ha)
  inert hx := .inert hx
  exhausted := .exhausted trivial
  invokeHere := Parse.grows_invokeHere s
  declared {home} _ _ binding recursive _ _ hx _ := Parse.grows_declared s home binding recursive hx
  covers _ := trivial
  akin := .refl s
  noted hx := .noted hx
  circular _ _ := .fail trivial
  whileLoading specifier hx := Expand.Makes.whileLoading hx specifier fun _ _ h => ⟨h.bindings, h.old, h.new⟩
  keep _ := .modify fun _ => .of_registry (List.prefix_refl _) rfl
  processImport imported _ _ hp _ := .bind (Expand.Grows.noted (Expand.noted_request _)) fun _ => .bind (hp _ _)
    fun record => .forM (Expand.grows_bindImport s record imported)

/-- What bindings mean in the run that an operation on a program leaves has grown from nothing. -/
theorem Run.Final.grows {s : Setup} {run : Run} (h : run.Final s) : Run.Grows {} run := by
  have hfinish : ∀ record, Expand.Grows (Expand.finish s record) :=
    Expand.makes_finish (c := .growth) (fun _ _ => .of_registry (List.prefix_refl _) rfl) s
  have hentry : ∀ text, Expand.Grows (Expand.entry s text) := (growthLaw s).entry
  cases h with
  | program text => exact (Expand.Makes.bind (hentry text) hfinish).final {}
  | module specifier =>
    have hload : Expand.Grows (Expand.load s (Expand.items s) specifier .unknown) := (growthLaw s).loadItems _ _
    exact (hload.bind hfinish).final {}
  | evaluation text =>
    refine (Expand.Makes.bind (hentry text) fun record => .bind .get fun run => ?_).final {}
    exact Expand.Grows.executes (Expand.executes_runModule s .runtime _ record)

end Hygiene
