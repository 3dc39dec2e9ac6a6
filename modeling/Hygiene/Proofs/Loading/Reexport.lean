import Hygiene.Module.Loader
import Hygiene.Proofs.Loading.Upkeep
import Mathlib.Data.List.Nodup

/-!
# Transformers that are exported again

An import of a transformer makes a binding with the meaning of the exported one, and no meaning is ever changed.
-/

namespace Hygiene

open List

variable {r record : ModuleRecord} {phase : Option Phase} {name : String}

namespace Store

variable {s s' : Store} {ident : Token} {b : Binding}

/-- Of fewer bindings an identifier refers to the same one, if that is among them. -/
theorem resolveIdent_of_prefix (hs : s.Numbered) (hs' : s'.Numbered) (h : s.bindings.toList <+: s'.bindings.toList)
    (hres : s'.resolveIdent ident = some b) (hb : b ∈ s.bindings.toList) : s.resolveIdent ident = some b := by
  obtain ⟨name, hname, hres⟩ := Option.bind_eq_some_iff.1 hres
  obtain ⟨_, hvisible, hbelow⟩ := (resolve_eq_some hs').1 hres
  exact Option.bind_eq_some_iff.2 ⟨name, hname,
    (resolve_eq_some hs).2 ⟨hb, hvisible, fun c hc => hbelow c (h.subset hc)⟩⟩

theorem Numbered.lt_size (hs : s.Numbered) (hb : b ∈ s.bindings.toList) : b.id < s.bindings.size := by
  have hmem : b.id ∈ s.bindings.toList.map (·.id) := mem_map_of_mem hb
  rw [hs] at hmem
  exact mem_range.1 hmem

end Store

/-! ### What imports of transformers make -/

/-- The binding with the number means the transformer. -/
def Run.Means (run : Run) (id : BindingId) (t : Transformer) : Prop :=
  id < run.store.bindings.size ∧ run.registry.transformer? id = some t

/-- A binding was made for the identifier that means the transformer. -/
structure Run.Binds (run : Run) (ident : Token) (t : Transformer) (b : Binding) : Prop where
  mem : b ∈ run.store.bindings.toList
  name : b.name = ident.name
  scopes : b.scopes = ident.scopes
  shown : b.hiddenFrom = none
  kind : b.kind = .transformer
  means : run.Means b.id t

/-- The import was carried out: for each transformer that it asks for, a binding was made with the same meaning. -/
structure Import.Obtained (i : Import) (run : Run) (record : ModuleRecord) : Prop where
  isIdent : ∀ t ∈ i.bindings, t.isIdent = true
  mem : (i.specifier, record) ∈ run.modules
  binds : ∀ wanted ∈ i.wanted, ∀ id, record.export? wanted.1 = some (id, true) →
    ∃ t b, run.Means id t ∧ run.Binds wanted.2.1 t b

/-- The expansion of a module is finished in the run, and the record is made. -/
structure Run.Finishes (run : Run) (record : ModuleRecord) : Prop where
  numbered : run.store.Numbered
  items : ∃ file dialect, ModuleRecord.ofItems run.store record.specifier file dialect record.items = .ok record
  imports : ∀ i, .importItem i ∈ record.items → ∃ imported, i.Obtained run imported
  exports : ∀ name id, record.export? name = some (id, true) → ∃ t, run.Means id t

/-- Every binding that stands for a transformer meant one. -/
def Snapshot.Complete (snapshot : Snapshot) : Prop := ∀ b ∈ snapshot.store.bindings.toList, b.kind = .transformer →
  ∃ t, snapshot.registry.transformer? b.id = some t

/-- Modules were finished one after the other, each when everything in it was there, and with complete bindings. -/
structure Run.Compiled (run : Run) : Prop where
  nodup : (Assoc.keys run.modules).Nodup
  named : ∀ entry ∈ run.modules, entry.1 = entry.2.specifier
  finished : ∀ entry ∈ run.modules, ∃ past : Run, past.Later run ∧ past.Finishes entry.2 ∧
    ⟨entry.1, past.store, past.registry⟩ ∈ run.snapshots
  snapshots : run.snapshots.map (·.specifier) = (Assoc.keys run.modules).reverse
  complete : ∀ snapshot ∈ run.snapshots, snapshot.Complete

/-- The modules are the same, and bindings stay with their meanings. -/
structure Run.Stays (run run' : Run) : Prop where
  grows : run.Grows run'
  modules : run'.modules = run.modules
  snapshots : run'.snapshots = run.snapshots

section

variable {run run' run'' : Run} {id : BindingId} {t : Transformer} {b : Binding} {ident : Token}

theorem Run.Means.grows (h : run.Means id t) (hg : run.Grows run') : run'.Means id t :=
  ⟨Nat.lt_of_lt_of_le h.1 hg.size_le, (hg.old id h.1).trans h.2⟩

theorem Run.Binds.grows (h : run.Binds ident t b) (hg : run.Grows run') : run'.Binds ident t b :=
  { h with mem := hg.bindings.subset h.mem, means := h.means.grows hg }

theorem Run.Binds.resolveIdent (h : run.Binds ident t b) (honce : run.store.BoundOnce ident) (hs : run.store.Numbered)
    (hident : ident.isIdent = true) : run.store.resolveIdent ident = some b :=
  honce.resolveIdent hs hident h.mem h.name h.scopes fun x hx => by
    rw [h.shown] at hx
    cases hx

theorem Import.Obtained.later {i : Import} (h : i.Obtained run record) (hl : run.Later run') :
    i.Obtained run' record where
  isIdent := h.isIdent
  mem := hl.modules.subset h.mem
  binds wanted hw id hid := by
    obtain ⟨t, b, hmeans, hbinds⟩ := h.binds wanted hw id hid
    exact ⟨t, b, hmeans.grows hl.grows, hbinds.grows hl.grows⟩

namespace Run.Stays

theorem refl (run : Run) : run.Stays run := ⟨.refl run, rfl, rfl⟩

theorem trans (h : run.Stays run') (h' : run'.Stays run'') : run.Stays run'' :=
  ⟨h.grows.trans h'.grows, h'.modules.trans h.modules, h'.snapshots.trans h.snapshots⟩

theorem executes (h : run.Executes phase run') : run.Stays run' := by
  rw [h.same]
  exact ⟨.of_registry (prefix_refl _) rfl, rfl, rfl⟩

theorem afterBind (run : Run) (ident : Token) (kind : BindingKind) :
    run.Stays (Expand.afterBind run ident kind false) := ⟨Expand.grows_afterBind run ident kind false, rfl, rfl⟩

theorem later (h : run.Stays run') : run.Later run' := ⟨h.grows, h.modules ▸ prefix_refl _⟩

theorem compiled (hs : run.Stays run') (h : run.Compiled) : run'.Compiled where
  nodup := hs.modules ▸ h.nodup
  named := hs.modules ▸ h.named
  finished := by
    rw [hs.modules]
    intro entry hentry
    obtain ⟨past, hpast, hfinishes, hsnapshot⟩ := h.finished entry hentry
    exact ⟨past, hpast.trans hs.later, hfinishes, hs.snapshots ▸ hsnapshot⟩
  snapshots := by
    rw [hs.snapshots, hs.modules]
    exact h.snapshots
  complete := hs.snapshots ▸ h.complete

end Run.Stays

theorem Run.Reads.stays (h : run.Reads run') : run.Stays run' :=
  ⟨h.grows, h.modules, congrArg ModuleState.snapshots h.moduleState⟩

end

namespace Expand

variable {α : Type} {run : Run}

theorem yields_executes {x : Expand α} (hx : Executes phase x) (run : Run) :
    Yields run x (fun _ => run.Stays) fun _ => run.Stays :=
  (hx run).imp (fun _ _ h => .executes h) fun _ _ h => .executes h.1

/-- A name that is imported is bound to the meaning of the transformer that it is exported for. -/
theorem yields_bindImport (s : Setup) (imported : Import) (wanted : String × Token × Site)
    (hexports : ∀ id, record.export? wanted.1 = some (id, true) → ∃ t, run.Means id t) :
    Yields run (bindImport s record imported wanted) (fun _ run' => run.Stays run' ∧
      ∀ id, record.export? wanted.1 = some (id, true) → ∃ t b, run'.Means id t ∧ run'.Binds wanted.2.1 t b)
      fun _ => run.Stays := by
  obtain ⟨name, binding, site⟩ := wanted
  have hbind : ∀ {run : Run} (kind : BindingKind), Yields run (Expand.bind binding kind false)
      (fun id run' => id = run.store.bindings.size ∧ run' = afterBind run binding kind false) fun _ => run.Stays :=
    fun kind => .of_ok (bind_eq _ _ _ _) ⟨rfl, rfl⟩
  unfold bindImport
  dsimp only at hexports ⊢
  split
  · exact .fail (.refl run)
  · next exported hexport =>
    obtain ⟨t, hmeans⟩ := hexports exported hexport
    refine .bind (hbind _) ?_
    rintro _ _ ⟨rfl, rfl⟩
    have hstays := Run.Stays.afterBind run binding .transformer
    have hget := (hmeans.grows hstays.grows).2
    refine .get_bind ?_
    rw [hget]
    have hgrows := hstays.grows.define (Nat.le_refl _) (getElem?_afterBind run binding .transformer false) (t := t) nofun
    refine .of_ok rfl ⟨⟨hgrows, rfl, rfl⟩, fun id hid => ?_⟩
    obtain rfl : exported = id := congrArg Prod.fst (Option.some.inj (hexport.symm.trans hid))
    refine ⟨t, newBinding run binding .transformer false, hmeans.grows hgrows, ?_, rfl, rfl, rfl, rfl, ?_, ?_⟩
    · exact mem_of_getElem? (getElem?_afterBind run binding .transformer false)
    · simp [afterBind, newBinding]
    · simp [Registry.transformer?, Registry.define, Assoc.get?_insert, newBinding]
  · next exported hexport =>
    have hnone : ∀ (run' : Run) id, record.export? name = some (id, true) →
        ∃ t b, run'.Means id t ∧ run'.Binds binding t b := fun _ id hid => by
      rw [hexport] at hid
      cases hid
    refine .ite (fun _ => .get_bind ?_) fun _ => ?_
    · refine .bind (yields_executes (executes_instantiate s .compileTime _ record) run) fun values run₁ h₁ => ?_
      refine .bind ((hbind _).imp (fun _ _ h => h) fun _ _ h => h₁.trans h) ?_
      rintro _ _ ⟨rfl, rfl⟩
      have hstays := h₁.trans (.afterBind run₁ binding (.compileTimeImport imported.specifier name))
      exact .of_ok rfl ⟨⟨.trans hstays.grows (.of_registry (prefix_refl _) rfl), hstays.modules, hstays.snapshots⟩,
        hnone _⟩
    · have hdiscard : discard (Expand.bind binding (.runtimeImport imported.specifier name) false) run =
          .ok () (afterBind run binding (.runtimeImport imported.specifier name) false) := by
        simp [discard, Functor.discard, Functor.mapConst, EStateM.map, bind_eq]
      exact .of_ok hdiscard ⟨.afterBind run binding _, hnone _⟩

end Expand

/-! ### All runs -/

/-- A record made of its items may be kept once its imports are there. -/
theorem Run.Compiled.keep {run : Run} (h : run.Compiled) (hr : run.Sound) (hs : run.Settled)
    (hnew : record.specifier ∉ Assoc.keys run.modules)
    (hitems : ∃ file dialect, ModuleRecord.ofItems run.store record.specifier file dialect record.items = .ok record)
    (himports : ∀ i, .importItem i ∈ record.items → ∃ imported, i.Obtained run imported) :
    (run.keeping record).Compiled := by
  have hmodules : (run.keeping record).modules = run.modules ++ [(record.specifier, record)] :=
    Assoc.insert_of_not_mem_keys hnew record
  have hlater : run.Later (run.keeping record) := ⟨.of_registry (prefix_refl _) rfl, hmodules ▸ prefix_append _ _⟩
  have hkeys : Assoc.keys (run.keeping record).modules = Assoc.keys run.modules ++ [record.specifier] := by
    rw [hmodules]
    simp [Assoc.keys]
  have hcomplete : ∀ b ∈ run.store.bindings.toList, b.kind.isTransformer = true → ∃ t, run.Means b.id t := by
    intro b hb hkind
    cases ht : run.registry.transformer? b.id with
    | none => exact absurd ⟨⟨b, hb, hkind, rfl⟩, ht⟩ (hs b.id)
    | some t => exact ⟨t, hr.numbered.lt_size hb, ht⟩
  constructor
  · rw [hkeys]
    exact concat_eq_append ▸ h.nodup.concat hnew
  · rw [hmodules]
    intro entry hentry
    rcases mem_append.1 hentry with hold | hnew
    · exact h.named entry hold
    · rw [mem_singleton.1 hnew]
  · rw [hmodules]
    intro entry hentry
    rcases mem_append.1 hentry with hold | hnew
    · obtain ⟨past, hpast, hfinishes, hsnapshot⟩ := h.finished entry hold
      exact ⟨past, hpast.trans hlater, hfinishes, mem_cons_of_mem _ hsnapshot⟩
    · rw [mem_singleton.1 hnew]
      refine ⟨run, hlater, ⟨hr.numbered, hitems, himports, fun name id hid => ?_⟩, mem_cons_self⟩
      have hmem : (name, id) ∈ record.transformerExports := by
        unfold ModuleRecord.export? at hid
        split at hid
        · next hget =>
          cases hid
          exact Assoc.mem_of_get? hget
        · simp at hid
      obtain ⟨file, dialect, hitems⟩ := hitems
      obtain ⟨b, hb, hkind, rfl⟩ := (ModuleRecord.ofItems_ok hitems).1 _ hmem
      exact hcomplete b hb hkind
  · rw [hkeys, reverse_append]
    exact congrArg (record.specifier :: ·) h.snapshots
  · refine forall_mem_cons.2 ⟨fun b hb hkind => ?_, h.complete⟩
    obtain ⟨t, ht⟩ := hcomplete b hb (by rw [hkind]; rfl)
    exact ⟨t, ht.2⟩

/-- Modules are finished with complete bindings, and their imports are carried out. -/
def meaningUpkeep (s : Setup) : Upkeep s where
  Holds := Run.Compiled
  Failed := Run.Compiled
  Known i run := ∃ record, i.Obtained run record
  failed h := h
  reads hreads h := hreads.stays.compiled h
  fails hreads h := hreads.stays.compiled h
  known hlater h := h.imp fun _ hobtained => hobtained.later hlater
  imports {run record} imported hr hmem hident h := by
    obtain ⟨past, hpast, hfinishes, -⟩ := h.finished _ hmem
    refine (Expand.Yields.forM_mem (I := run.Stays) (G := fun wanted run' => ∀ id,
      record.export? wanted.1 = some (id, true) → ∃ t b, run'.Means id t ∧ run'.Binds wanted.2.1 t b) (.refl run)
      fun wanted _ run' hstays => ?_).imp ?_ fun _ _ hb => hb
    · refine (Expand.yields_bindImport s imported wanted fun id hid => ?_).imp ?_ fun _ _ hstays' =>
        (hstays.trans hstays').compiled h
      · obtain ⟨t, ht⟩ := hfinishes.exports wanted.1 id hid
        exact ⟨t, ht.grows (hpast.grows.trans hstays.grows)⟩
      · rintro _ run'' ⟨hstays', hbinds⟩
        refine ⟨hstays.trans hstays', hbinds, fun other hother id hid => ?_⟩
        obtain ⟨t, b, hmeans, hbinds⟩ := hother id hid
        exact ⟨t, b, hmeans.grows hstays'.grows, hbinds.grows hstays'.grows⟩
    · rintro _ run' ⟨hstays, hbinds, _⟩
      exact ⟨hstays.compiled h, record, hident, hstays.modules ▸ hmem, hbinds⟩
  keep hr hs hnew hitems himports h := h.keep hr hs hnew hitems himports

theorem Run.Compiled.empty : Run.Compiled {} := ⟨nodup_nil, nofun, nofun, rfl, nofun⟩

/-- In every run modules are finished with complete bindings. -/
theorem Run.Final.compiled {s : Setup} {run : Run} (hrun : run.Final s) : run.Compiled := by
  refine (meaningUpkeep s).final .empty (fun text record expanded _ _ h => ?_) hrun
  exact (Expand.yields_executes (Expand.executes_runModule s .runtime _ record) expanded).imp
    (fun _ _ hstays => hstays.compiled h) fun _ _ hstays => hstays.compiled h

/-! ### Chains of modules -/

/-- The identifiers as which a module imports a name of another module. -/
def ModuleRecord.importedAs (r : ModuleRecord) (m name : String) : List Token := r.items.flatMap fun
  | .importItem i => if i.specifier = m then (i.wanted.filter (·.1 = name)).map (·.2.1) else []
  | _ => []

/-- All names that a module exports. -/
def ModuleRecord.exportNames (r : ModuleRecord) : List String := (r.items.flatMap ModuleItem.exports).map (·.1)

/-- The identifiers for which a module exports a name. -/
def ModuleRecord.exportedAs (r : ModuleRecord) (name : String) : List Token :=
  ((r.items.flatMap ModuleItem.exports).filter (·.1 = name)).map (·.2)

/-- The second module imports the name from the first, binds what it is imported as only once, and exports that again,
no name twice. -/
def Run.PassesOn (run : Run) (source target : String × String) : Prop :=
  ∃ entry ∈ run.modules, entry.1 = target.1 ∧ entry.2.exportNames.Nodup ∧
    ∃ ident ∈ entry.2.importedAs source.1 source.2, run.store.BoundOnce ident ∧
      ∃ inner ∈ entry.2.exportedAs target.2, run.store.resolveIdent inner = run.store.resolveIdent ident

deriving instance DecidableEq for Binding

instance (run : Run) (source target : String × String) : Decidable (run.PassesOn source target) :=
  inferInstanceAs (Decidable (∃ entry ∈ run.modules, entry.1 = target.1 ∧ entry.2.exportNames.Nodup ∧
    ∃ ident ∈ entry.2.importedAs source.1 source.2, run.store.BoundOnce ident ∧
      ∃ inner ∈ entry.2.exportedAs target.2, run.store.resolveIdent inner = run.store.resolveIdent ident))

theorem ModuleRecord.mem_importedAs {m : String} {ident : Token} (h : ident ∈ r.importedAs m name) :
    ∃ i, .importItem i ∈ r.items ∧ i.specifier = m ∧ ∃ wanted ∈ i.wanted, wanted.1 = name ∧ wanted.2.1 = ident := by
  obtain ⟨item, hitem, hident⟩ := mem_flatMap.1 h
  cases item with
  | importItem i =>
    dsimp only at hident
    split at hident
    · next hm =>
      obtain ⟨wanted, hwanted, rfl⟩ := mem_map.1 hident
      obtain ⟨hwanted, hname⟩ := mem_filter.1 hwanted
      exact ⟨i, hitem, hm, wanted, hwanted, of_decide_eq_true hname, rfl⟩
    · cases hident
  | _ => cases hident

theorem ModuleRecord.mem_exportedAs {ident : Token} (h : ident ∈ r.exportedAs name) :
    (name, ident) ∈ r.items.flatMap ModuleItem.exports := by
  obtain ⟨entry, hmem, rfl⟩ := mem_map.1 h
  obtain ⟨hentry, hname⟩ := mem_filter.1 hmem
  obtain rfl : entry.1 = name := of_decide_eq_true hname
  exact hentry

/-- The module exports the name for a binding that means the transformer. -/
def Run.Offers (run : Run) (t : Transformer) (source : String × String) : Prop :=
  ∃ record, (source.1, record) ∈ run.modules ∧ ∃ id, record.export? source.2 = some (id, true) ∧ run.Means id t

namespace Run.Compiled

variable {run : Run} {t : Transformer} {source target : String × String}

/-- What is imported as a name that means a transformer refers to a binding with the same meaning, which was there when
the importing module was finished. -/
theorem exists_past (h : run.Compiled) (hs : run.store.Numbered) (hoffers : run.Offers t source)
    {entry : String × ModuleRecord} (hmem : entry ∈ run.modules) {ident : Token}
    (hident : ident ∈ entry.2.importedAs source.1 source.2) (honce : run.store.BoundOnce ident) : ∃ (past : Run) (b : Binding),
      past.Later run ∧ past.Finishes entry.2 ∧ b ∈ past.store.bindings.toList ∧ run.store.resolveIdent ident = some b ∧
        b.kind = .transformer ∧ run.Means b.id t := by
  obtain ⟨exporter, hexporter, id, hid, hmeans⟩ := hoffers
  obtain ⟨past, hpast, hfinishes, -⟩ := h.finished _ hmem
  obtain ⟨i, hi, hm, wanted, hwanted, hname, rfl⟩ := ModuleRecord.mem_importedAs hident
  obtain ⟨imported, hobtained⟩ := hfinishes.imports i hi
  obtain rfl : imported = exporter := congrArg Prod.snd
    (inj_on_of_nodup_map h.nodup (hpast.modules.subset hobtained.mem) hexporter hm)
  obtain ⟨t', b, hmeans', hbinds⟩ := hobtained.binds wanted hwanted id (hname ▸ hid)
  obtain rfl : t' = t := Option.some.inj ((hmeans'.grows hpast.grows).2.symm.trans hmeans.2)
  refine ⟨past, b, hpast, hfinishes, hbinds.mem, ?_, hbinds.kind, hbinds.means.grows hpast.grows⟩
  exact (hbinds.grows hpast.grows).resolveIdent honce hs
    (hobtained.isIdent _ (Import.mem_bindings.2 ⟨wanted, hwanted, rfl⟩))

/-- What a module passes on means the same. -/
theorem offers_of_passesOn (h : run.Compiled) (hs : run.store.Numbered) (hoffers : run.Offers t source)
    (hpasses : run.PassesOn source target) : run.Offers t target := by
  obtain ⟨⟨m, record⟩, hmem, rfl, hnodup, ident, hident, honce, inner, hinner, hsame⟩ := hpasses
  obtain ⟨past, b, hpast, hfinishes, hb, hres, hkind, hmeans⟩ := h.exists_past hs hoffers hmem hident honce
  obtain ⟨file, dialect, hitems⟩ := hfinishes.items
  have hpastInner : past.store.resolveIdent inner = some b :=
    Store.resolveIdent_of_prefix hfinishes.numbered hs hpast.grows.bindings (hsame.trans hres) hb
  have hexport := ModuleRecord.export?_of_ofItems hitems hnodup (ModuleRecord.mem_exportedAs hinner) hpastInner
  rw [hkind] at hexport
  exact ⟨record, hmem, b.id, hexport, hmeans⟩

/-- All modules of a chain offer the same transformer. -/
theorem offers_of_chain (h : run.Compiled) (hs : run.store.Numbered) (hoffers : run.Offers t source)
    (hchain : Relation.ReflTransGen run.PassesOn source target) : run.Offers t target := by
  induction hchain with
  | refl => exact hoffers
  | tail _ hstep ih => exact h.offers_of_passesOn hs ih hstep

end Run.Compiled

/-- In every run: when a module has been compiled, each binding that stands for a transformer means one; and along every
chain of modules in which each imports a transformer from the one before and exports it again, what is imported refers
to a binding that means the transformer of the first module. -/
theorem Run.Final.transformers_survive {s : Setup} {run : Run} (hrun : run.Final s) :
    run.snapshots.map (·.specifier) = (Assoc.keys run.modules).reverse ∧
    (∀ snapshot ∈ run.snapshots, ∀ b ∈ snapshot.store.bindings.toList, b.kind = .transformer →
      ∃ t, snapshot.registry.transformer? b.id = some t) ∧
    ∀ declaring ∈ run.modules, ∀ name id, declaring.2.export? name = some (id, true) →
      ∃ t, run.registry.transformer? id = some t ∧
        ∀ last, Relation.ReflTransGen run.PassesOn (declaring.1, name) last →
          ∀ importing ∈ run.modules, ∀ ident ∈ importing.2.importedAs last.1 last.2, run.store.BoundOnce ident →
            ∃ b, run.store.resolveIdent ident = some b ∧ b.kind = .transformer ∧
              run.registry.transformer? b.id = some t := by
  have h := hrun.compiled
  have hs := hrun.sound.numbered
  refine ⟨h.snapshots, h.complete, fun declaring hmem name id hid => ?_⟩
  obtain ⟨past, hpast, hfinishes, -⟩ := h.finished _ hmem
  obtain ⟨t, ht⟩ := hfinishes.exports name id hid
  have hmeans := ht.grows hpast.grows
  refine ⟨t, hmeans.2, fun last hchain importing himporting ident hident honce => ?_⟩
  have hlast := h.offers_of_chain hs ⟨declaring.2, hmem, id, hid, hmeans⟩ hchain
  obtain ⟨_, b, _, _, _, hres, hkind, hmeans'⟩ := h.exists_past hs hlast himporting hident honce
  exact ⟨b, hres, hkind, hmeans'.2⟩

/-- A module with a transformer, one that exports it as its default, and one that exports it under yet another name. -/
def Setup.relay : Setup where
  load := tableLoader [("./a.js", "#lang 'sweet.js'; export syntax m = ctx => #`1`;"),
    ("./b.js", "import \x7b m as n \x7d from './a.js'; export \x7b n as default \x7d;"),
    ("./c.js", "import d from './b.js' for syntax; export \x7b d as e \x7d;")]

/-- An import from the last module. -/
def relayText : String := "import \x7b e as f \x7d from './c.js'; output = f;"

/-- Whether the transformer is passed on by all modules of the chain, and what it is imported as is bound once. -/
def Run.isRelayed (run : Run) : Bool :=
  (∃ entry ∈ run.modules, entry.1 = "./a.js" ∧ (entry.2.export? "m").any (·.2) = true) ∧
    run.PassesOn ("./a.js", "m") ("./b.js", "default") ∧ run.PassesOn ("./b.js", "default") ("./c.js", "e") ∧
    ∃ entry ∈ run.modules, ∃ ident ∈ entry.2.importedAs "./c.js" "e", run.store.BoundOnce ident

/-- What the program imports from the last module means the transformer of the first. -/
theorem Run.Final.transformers_survive_relay : ∃ expansion run, expandProgram .relay relayText = .ok expansion run ∧
    ∃ declaring ∈ run.modules, declaring.1 = "./a.js" ∧ ∃ id, declaring.2.export? "m" = some (id, true) ∧
      Relation.ReflTransGen run.PassesOn ("./a.js", "m") ("./c.js", "e") ∧
      ∃ importing ∈ run.modules, ∃ ident ∈ importing.2.importedAs "./c.js" "e", run.store.BoundOnce ident ∧
        ∃ t b, run.registry.transformer? id = some t ∧ run.store.resolveIdent ident = some b ∧ b.kind = .transformer ∧
          run.registry.transformer? b.id = some t := by
  obtain ⟨expansion, run, hres, hok⟩ := exists_of_succeeds (expandProgram .relay relayText) (fun _ run => run.isRelayed)
    (by decide +kernel)
  obtain ⟨⟨declaring, hmem, hname, hexport⟩, hfirst, hsecond, importing, himporting, ident, hident, honce⟩ :=
    of_decide_eq_true hok
  obtain ⟨⟨id, isTransformer⟩, hid, htransformer⟩ := (Option.any_eq_true _ _).1 hexport
  obtain rfl : isTransformer = true := htransformer
  have hchain : Relation.ReflTransGen run.PassesOn (declaring.1, "m") ("./c.js", "e") := by
    rw [hname]
    exact (Relation.ReflTransGen.single hfirst).tail hsecond
  obtain ⟨t, ht, hsurvives⟩ := (Run.Final.transformers_survive (.of_ok hres)).2.2 declaring hmem "m" id hid
  obtain ⟨b, hb, hkind, hmeans⟩ := hsurvives _ hchain importing himporting ident hident honce
  exact ⟨expansion, run, hres, declaring, hmem, hname, id, hid, hname ▸ hchain, importing, himporting, ident, hident,
    honce, t, b, ht, hb, hkind, hmeans⟩

end Hygiene
