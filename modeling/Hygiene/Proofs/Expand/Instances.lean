import Hygiene.Proofs.Expand.Action
import Hygiene.Proofs.Expand.Conduct

/-!
# Instances of modules are sound

Running a module or an initializer runs code that has come about, in frames that hold what has come about.
-/

namespace Hygiene

variable {run : Run}

/-- A sound run that comes after another one, in which code may have been run. -/
def Run.After (run run' : Run) : Prop := run'.Sound ∧ run.Extends False run'

theorem Run.After.trans {run' run'' : Run} (h : run.After run') (h' : run'.After run'') : run.After run'' :=
  ⟨h'.1, h.2.trans h'.2⟩

theorem Run.Sound.after_self (hr : run.Sound) : run.After run := ⟨hr, .refl _ _⟩

theorem Run.Extends.arises {quiet : Prop} {run' : Run} (h : run.Extends quiet run') :
    ∀ p, Arises run.events p → Arises run'.events p := by
  obtain ⟨new, hnew, _⟩ := h.events
  intro p hp
  rw [hnew]
  exact hp.append

/-- The statement that an item runs as holds no more than the item. -/
theorem ModuleItem.good_statement {G : Piece → Prop} {item : ModuleItem} {s : Statement}
    (h : item.statement? = some s) (hi : Content.Good G item.content) : Content.Good G s.content := by
  unfold statement? at h
  split at h <;> cases h
  · exact hi
  · exact hi
  · exact hi
  · simpa [ModuleItem.content, ExportDeclaration.content, Statement.content, Declaration.content,
      DeclarationKind.declaresTransformers, Declarator.contentAll, Expression.contentOption] using hi

/-- Where all pieces of a list have come about and identifiers do not count, the list is known. -/
theorem Known.of_good {h : List Event} {l : List Content} (hl : Content.Good (Arises h) l) : Known False h l := by
  intro c hc
  cases c with
  | piece p => exact hl p hc
  | use ident => exact False.elim

/-- What running code may do to a sound run: no module is registered, nothing gets a meaning, and what it leaves is made
of known pieces. -/
structure Run.Works (run run' : Run) : Prop where
  after : run.After run'
  heap : run'.heap.Good (Arises run.events)
  instances : ∀ entry ∈ run'.instances, ∀ field ∈ entry.2, field.2.Good (Arises run.events)
  modules : run'.modules = run.modules
  registry : run'.registry = run.registry

theorem Run.Sound.works_self (hr : run.Sound) : run.Works run :=
  ⟨hr.after_self, hr.heap, hr.instances, rfl, rfl⟩

/-- What is done besides to a run in which code works. -/
theorem Run.Works.same {run₁ run₂ : Run} (h : run.Works run₁) (hs : run₁.SameHistory run₂)
    (heap : run₂.heap.Good (Arises run.events)) : run.Works run₂ where
  after := h.after.trans ⟨h.after.1.of_sameHistory hs (heap.mono h.after.2.arises), hs.extends⟩
  heap := heap
  instances := hs.instances ▸ h.instances
  modules := hs.modules.trans h.modules
  registry := hs.registry.trans h.registry

namespace Conduct

variable {run : Run} (hr : run.Sound)

/-- Code that has come about is run, and makes nothing of which that is not true. -/
def arising : Conduct where
  demand := .ofPieces (Arises run.events)
  frames := rfl
  literals p hp _ := Arises.literals p hp
  unknown := trivial
  Holds := run.Works
  Fails _ run' := run'.Sound
  heap h := h.heap
  values h entry he := Value.meets_ofPieces.2 (hr.values entry (h.registry ▸ he))
  setHeap h heap := h.same ⟨rfl, rfl, rfl, rfl, rfl⟩ heap
  report _ _ h _ := h.same ⟨rfl, rfl, rfl, rfl, rfl⟩ h.heap
  fail h _ _ := h.after.1

theorem arising_records : (arising hr).Records := by
  intro run' code h hcode
  have hknown : Known False run'.events (Statement.contentAll code) :=
    .of_good ((Demand.meets_ofPieces.1 hcode).mono h.after.2.arises)
  have hran : Expand.Sound ⟨False, False, []⟩ (Statement.contentAll code) (Expand.record (.ran code)) fun _ => [] :=
    Expand.sound_record rfl (fun _ => rfl) False.elim (fun _ _ hk => hk.good) fun _ _ => .nil
  have hends := hran run' h.after.1 False.elim nofun hknown
  exact { h with after := h.after.trans ⟨hends.1, hends.2.1⟩ }

theorem arising_runs {record : ModuleRecord} (h : Content.Good (Arises run.events) record.content) :
    (arising hr).Runs record := by
  refine ⟨trivial, fun inner hinner => Demand.meets_ofPieces.2 ?_⟩
  obtain ⟨item, hitem, hs⟩ := List.mem_filterMap.1 hinner
  exact ModuleItem.good_statement hs fun p hp => h p (List.mem_flatMap.2 ⟨item, hitem, hp⟩)

theorem arising_ofModules (phase : Phase) : (arising hr).OfModules phase where
  records := arising_records hr
  modules h entry he := arising_runs hr (hr.modules entry (h.modules ▸ he)).good
  instances h entry he field hf := Value.meets_ofPieces.2 (h.instances entry he field hf)
  track _ h := h.same ⟨rfl, rfl, rfl, rfl, rfl⟩ h.heap
  keep specifier values h hvalues := by
    have hgood (entry) (he : entry ∈ Assoc.insert (specifier, phase) values _) (field) (hf : field ∈ entry.2) : field.2.Good (Arises run.events) :=
      (Assoc.mem_insert he).elim (fun heq => Value.meets_ofPieces.1 (hvalues field (heq ▸ hf))) (h.instances entry · field hf)
    refine { h with instances := hgood, after := h.after.trans ⟨{ h.after.1 with instances := ?_ }, ?_⟩ }
    · exact fun entry he field hf => (hgood entry he field hf).mono h.after.2.arises
    · exact ⟨⟨[], rfl, False.elim⟩, fun _ h => h, fun _ h => h⟩

end Conduct

namespace Expand

variable {run : Run} {record : ModuleRecord}

theorem runModule_ends (s : Setup) (phase : Phase) (limit : Nat) (hr : run.Sound)
    (hrecord : Content.Good (Arises run.events) record.content) :
    Ends run (runModule s phase (instantiate s phase limit) record) fun _ run' => run.After run' := by
  have hc := Conduct.arising_ofModules hr phase
  have hruns := Conduct.arising_runs hr hrecord
  exact (Conduct.keeps_runModule hc s (Conduct.keeps_instantiate hc s limit) hruns run hr.works_self).imp
    (fun _ _ h => h.1.after) fun _ _ he => he

/-- An instance of a module is made from a sound run, and what it exports has come about. -/
theorem instantiate_ends (s : Setup) (phase : Phase) (limit : Nat) (hr : run.Sound)
    (hrecord : Content.Good (Arises run.events) record.content) :
    Ends run (instantiate s phase limit record) fun values run' =>
      run.After run' ∧ ∀ v ∈ values, v.2.Good (Arises run'.events) := by
  have hc := Conduct.arising_ofModules hr phase
  refine (Conduct.keeps_instantiate hc s limit record (Conduct.arising_runs hr hrecord) run hr.works_self).imp ?_
    fun _ _ he => he
  rintro values run' ⟨hworks, hvalues⟩
  exact ⟨hworks.after, fun v hv => (Value.meets_ofPieces.1 (hvalues v hv)).mono hworks.after.2.arises⟩

/-- An initializer is evaluated to a value whose pieces have come about. -/
theorem sound_transformerValue {q : Prop} {regions : List ScopeId} {l : List Content} (s : Setup) (name : String)
    (site : Site) {init : Expression} (h : init.content ⊆ l) :
    Sound ⟨False, q, regions⟩ l (transformerValue s name site init) Value.content := by
  intro run hr _ _ hl
  refine (Conduct.keeps_transformerValue (Conduct.arising_records hr) s name trivial
    (Demand.meets_ofPieces.2 (hl.mono h).good) run hr.works_self).imp ?_ fun _ _ he => he
  rintro value run' ⟨hworks, hvalue⟩
  refine ⟨hworks.after.1, hworks.after.2, fun c hc => ?_⟩
  obtain ⟨p, hp, rfl⟩ := List.mem_map.1 hc
  exact hworks.after.2.arises p (Value.meets_ofPieces.1 hvalue p hp)

end Expand

end Hygiene
